import Gherkin.Language.Dialect
/-!
The languages that come with the library, ordered by code. English is the default.
-/
namespace Gherkin
namespace Dialect

def words (strings : List String) : List Text := strings.map Text.ofString

def german : Dialect where
  name := "German"
  native := "Deutsch"
  feature := words ["Funktionalität", "Funktion"]
  background := words ["Grundlage", "Hintergrund", "Voraussetzungen", "Vorbedingungen"]
  rule := words ["Rule", "Regel"]
  scenario := words ["Beispiel", "Szenario"]
  scenarioOutline := words ["Szenariogrundriss", "Szenarien"]
  examples := words ["Beispiele"]
  context := words ["* ", "Angenommen ", "Gegeben sei ", "Gegeben seien "]
  action := words ["* ", "Wenn "]
  outcome := words ["* ", "Dann "]
  conjunction := words ["* ", "Und "]
  contrast := words ["* ", "Aber "]

def english : Dialect where
  name := "English"
  native := "English"
  feature := words ["Feature", "Business Need", "Ability"]
  background := words ["Background"]
  rule := words ["Rule"]
  scenario := words ["Example", "Scenario"]
  scenarioOutline := words ["Scenario Outline", "Scenario Template"]
  examples := words ["Examples", "Scenarios"]
  context := words ["* ", "Given "]
  action := words ["* ", "When "]
  outcome := words ["* ", "Then "]
  conjunction := words ["* ", "And "]
  contrast := words ["* ", "But "]

def spanish : Dialect where
  name := "Spanish"
  native := "español"
  feature := words ["Característica", "Necesidad del negocio", "Requisito"]
  background := words ["Antecedentes"]
  rule := words ["Regla", "Regla de negocio"]
  scenario := words ["Ejemplo", "Escenario"]
  scenarioOutline := words ["Esquema del escenario"]
  examples := words ["Ejemplos"]
  context := words ["* ", "Dado ", "Dada ", "Dados ", "Dadas "]
  action := words ["* ", "Cuando "]
  outcome := words ["* ", "Entonces "]
  conjunction := words ["* ", "Y ", "E "]
  contrast := words ["* ", "Pero "]

def french : Dialect where
  name := "French"
  native := "français"
  feature := words ["Fonctionnalité"]
  background := words ["Contexte"]
  rule := words ["Règle"]
  scenario := words ["Exemple", "Scénario"]
  scenarioOutline := words ["Plan du scénario", "Plan du Scénario"]
  examples := words ["Exemples"]
  context := words ["* ", "Soit ", "Sachant que ", "Sachant qu'", "Sachant ", "Etant donné que ",
    "Etant donné qu'", "Etant donné ", "Etant donnée ", "Etant donnés ", "Etant données ",
    "Étant donné que ", "Étant donné qu'", "Étant donné ", "Étant donnée ", "Étant donnés ",
    "Étant données "]
  action := words ["* ", "Quand ", "Lorsque ", "Lorsqu'"]
  outcome := words ["* ", "Alors ", "Donc "]
  conjunction := words ["* ", "Et que ", "Et qu'", "Et "]
  contrast := words ["* ", "Mais que ", "Mais qu'", "Mais "]

def japanese : Dialect where
  name := "Japanese"
  native := "日本語"
  feature := words ["フィーチャ", "機能"]
  background := words ["背景"]
  rule := words ["ルール"]
  scenario := words ["シナリオ"]
  scenarioOutline := words ["シナリオアウトライン", "シナリオテンプレート", "テンプレ", "シナリオテンプレ"]
  examples := words ["例", "サンプル"]
  context := words ["* ", "前提"]
  action := words ["* ", "もし"]
  outcome := words ["* ", "ならば"]
  conjunction := words ["* ", "且つ", "かつ"]
  contrast := words ["* ", "然し", "しかし", "但し", "ただし"]

def dutch : Dialect where
  name := "Dutch"
  native := "Nederlands"
  feature := words ["Functionaliteit"]
  background := words ["Achtergrond"]
  rule := words ["Regel"]
  scenario := words ["Voorbeeld", "Scenario"]
  scenarioOutline := words ["Abstract Scenario"]
  examples := words ["Voorbeelden"]
  context := words ["* ", "Gegeven ", "Stel "]
  action := words ["* ", "Als ", "Wanneer "]
  outcome := words ["* ", "Dan "]
  conjunction := words ["* ", "En "]
  contrast := words ["* ", "Maar "]

def portuguese : Dialect where
  name := "Portuguese"
  native := "português"
  feature := words ["Funcionalidade", "Característica", "Caracteristica"]
  background := words ["Contexto", "Cenário de Fundo", "Cenario de Fundo", "Fundo"]
  rule := words ["Regra"]
  scenario := words ["Exemplo", "Cenário", "Cenario"]
  scenarioOutline := words ["Esquema do Cenário", "Esquema do Cenario", "Delineação do Cenário",
    "Delineacao do Cenario"]
  examples := words ["Exemplos", "Cenários", "Cenarios"]
  context := words ["* ", "Dado ", "Dada ", "Dados ", "Dadas "]
  action := words ["* ", "Quando "]
  outcome := words ["* ", "Então ", "Entao "]
  conjunction := words ["* ", "E "]
  contrast := words ["* ", "Mas "]

end Dialect

namespace Language

/-- All languages, ordered by code. -/
def all : List Language :=
  [ofDialect (Text.ofString "de") .german, ofDialect (Text.ofString "en") .english,
   ofDialect (Text.ofString "es") .spanish, ofDialect (Text.ofString "fr") .french,
   ofDialect (Text.ofString "ja") .japanese, ofDialect (Text.ofString "nl") .dutch,
   ofDialect (Text.ofString "pt") .portuguese]

def defaultCode : Text := Text.ofString "en"

def default : Language := ofDialect defaultCode .english

end Language
end Gherkin
