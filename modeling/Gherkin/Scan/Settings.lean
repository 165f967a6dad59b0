import Gherkin.Language.Find
/-!
Settings of a scanner. The only one is the language that a text is in until a directive says
otherwise. Its value is looked up under one name, and a value that is blank counts as none.
-/
namespace Gherkin

structure Settings where
  defaultLanguage : Text := Language.defaultCode
  deriving DecidableEq

namespace Settings

def languageVariable : String := "GHERKIN_LEXER_LANGUAGE"

inductive Invalid
  | unsupportedLanguage (code : Text)
  deriving DecidableEq

def Invalid.message : Invalid → String
  | .unsupportedLanguage code => s!"unsupported default language '{code.asString}'"

def language (settings : Settings) : Except Invalid Language :=
  match Language.find? settings.defaultLanguage with
  | some language => .ok language
  | none => .error (.unsupportedLanguage settings.defaultLanguage)

/-- The settings with another default language, which is not checked here. -/
def withDefaultLanguage (settings : Settings) (code : Text) : Settings :=
  { settings with defaultLanguage := code }

def override (settings : Settings) (code : Option Text) : Settings :=
  match code with
  | some code => settings.withDefaultLanguage code
  | none => settings

def ofValue (value : Option Text) : Except Invalid Settings :=
  let code := (value.map (Text.trim Text.isBlank)).filter (· != [])
  let settings := ({} : Settings).override code
  settings.language.map fun _ => settings

def ofLookup {m : Type → Type} [Monad m] (lookup : String → m (Option Text)) :
    m (Except Invalid Settings) := do
  return ofValue (← lookup languageVariable)

end Settings
end Gherkin
