import Gherkin.Language.Tag
import Gherkin.Scan.Diagnostic
/-!
Diagnostics in words. There are words in two locales. A wording is a choice of locales in the
order in which they are wanted, and the first gives the words; American English is always among
those chosen, so there is always a first. A wording for which nothing was ever chosen has no words
and names the message instead.
-/
namespace Gherkin

inductive Locale
  | american | french
  deriving DecidableEq

namespace Locale

def code : Locale → String
  | .american => "en-US"
  | .french => "fr"

def ofTag? (tag : LanguageTag) : Option Locale :=
  if tag.primary = ['f', 'r'] then some .french
  else if tag.primary = ['e', 'n'] then some .american
  else none

def words (locale : Locale) (diagnostic : Diagnostic) : String :=
  let file := diagnostic.fileName.asString
  match locale, diagnostic with
  | .american, .unsupportedLanguage code _ =>
    s!"File: {file} declares an unsupported language: {code.asString}"
  | .american, .noValidGherkin _ => s!"File: {file} does not contain any valid gherkin"
  | .french, .unsupportedLanguage code _ =>
    s!"Fichier : {file} déclare une langue non prise en charge : {code.asString}"
  | .french, .noValidGherkin _ => s!"Fichier : {file} ne contient aucun gherkin valide"

end Locale

def Diagnostic.messageName : Diagnostic → String
  | .unsupportedLanguage _ _ => "diagnostic-unsupported-language"
  | .noValidGherkin _ => "diagnostic-no-valid-gherkin"

structure Wording where
  locales : List Locale := []
  deriving DecidableEq

namespace Wording

/-- Whether a character isolates a direction of writing. Such characters are kept out of messages,
since they would hide what a name in them consists of. -/
def isIsolate (c : Char) : Bool := 0x2066 ≤ c.toNat && c.toNat ≤ 0x2069

def select (requested : List LanguageTag) : Wording :=
  let found := (requested.filterMap Locale.ofTag?).eraseDups
  ⟨if .american ∈ found then found else found ++ [.american]⟩

def current (wording : Wording) : List Locale :=
  if wording.locales = [] then [.american] else wording.locales

def render (wording : Wording) (diagnostic : Diagnostic) : String :=
  let message :=
    match wording.locales with
    | [] => s!"No localization for id: \"{diagnostic.messageName}\""
    | locale :: _ => locale.words diagnostic
  String.ofList (message.toList.filter (!isIsolate ·))

end Wording
end Gherkin
