import FeatureFile.Keyword.Registry
/-!
The keyword tables that come with the library. A `*` leads any step; a keyword ending in `<` is
glued to the text behind it, as in languages written without spaces.
-/

namespace FeatureFile

/-- A table with an entry for every concept. -/
def KeywordTable.complete (name native feature background scenario scenarioOutline examples
    given condition result and but : String) : KeywordTable :=
  .ofList
    [(.name, name.toList), (.native, native.toList), (.feature, feature.toList),
      (.background, background.toList), (.scenario, scenario.toList),
      (.scenarioOutline, scenarioOutline.toList), (.examples, examples.toList),
      (.given, given.toList), (.«when», condition.toList), (.«then», result.toList),
      (.and, and.toList), (.but, but.toList)]

/-- The languages that come with the library. -/
def Registry.builtin : Registry := .ofList [
  ("da", .complete "Danish" "dansk" "Egenskab" "Baggrund" "Scenarie" "Abstrakt Scenario"
    "Eksempler" "*|Givet" "*|Når" "*|Så" "*|Og" "*|Men"),
  ("de", .complete "German" "Deutsch" "Funktionalität" "Grundlage" "Szenario" "Szenariogrundriss"
    "Beispiele" "*|Angenommen|Gegeben sei" "*|Wenn" "*|Dann" "*|Und" "*|Aber"),
  ("en", .complete "English" "English" "Feature" "Background" "Scenario" "Scenario Outline"
    "Examples|Scenarios" "*|Given" "*|When" "*|Then" "*|And" "*|But"),
  ("en-lol", .complete "LOLCAT" "LOLCAT" "OH HAI" "B4" "MISHUN" "MISHUN SRSLY" "EXAMPLZ"
    "*|I CAN HAZ" "*|WEN" "*|DEN" "*|AN" "*|BUT"),
  ("en-pirate", .complete "Pirate" "Pirate" "Ahoy matey!" "Yo-ho-ho" "Heave to"
    "Shiver me timbers" "Dead men tell no tales" "*|Gangway!" "*|Blimey!" "*|Let go and haul"
    "*|Aye" "*|Avast!"),
  ("es", .complete "Spanish" "español" "Característica" "Antecedentes" "Escenario"
    "Esquema del escenario" "Ejemplos" "*|Dado|Dada|Dados|Dadas" "*|Cuando" "*|Entonces" "*|Y"
    "*|Pero"),
  ("fi", .complete "Finnish" "suomi" "Ominaisuus" "Tausta" "Tapaus" "Tapausaihio" "Tapaukset"
    "*|Oletetaan" "*|Kun" "*|Niin" "*|Ja" "*|Mutta"),
  ("fr", .complete "French" "français" "Fonctionnalité" "Contexte" "Scénario"
    "Plan du scénario|Plan du Scénario" "Exemples"
    "*|Soit|Etant donné|Etant donnée|Etant donnés|Etant données|Étant donné|Étant donnée|Étant donnés|Étant données"
    "*|Quand|Lorsque|Lorsqu'<" "*|Alors" "*|Et" "*|Mais"),
  ("it", .complete "Italian" "italiano" "Funzionalità" "Contesto" "Scenario"
    "Schema dello scenario" "Esempi" "*|Dato|Data|Dati|Date" "*|Quando" "*|Allora" "*|E" "*|Ma"),
  ("ja", .complete "Japanese" "日本語" "フィーチャ|機能" "背景" "シナリオ" "シナリオアウトライン|シナリオテンプレート|テンプレ|シナリオテンプレ"
    "例|サンプル" "*|前提<" "*|もし<" "*|ならば<" "*|かつ<" "*|しかし<|但し<|ただし<"),
  ("nl", .complete "Dutch" "Nederlands" "Functionaliteit" "Achtergrond" "Scenario"
    "Abstract Scenario" "Voorbeelden" "*|Gegeven|Stel" "*|Als" "*|Dan" "*|En" "*|Maar"),
  ("no", .complete "Norwegian" "norsk" "Egenskap" "Bakgrunn" "Scenario" "Abstrakt Scenario"
    "Eksempler" "*|Gitt" "*|Når" "*|Så" "*|Og" "*|Men"),
  ("pl", .complete "Polish" "polski" "Właściwość" "Założenia" "Scenariusz" "Szablon scenariusza"
    "Przykłady" "*|Zakładając" "*|Jeżeli" "*|Wtedy" "*|Oraz" "*|Ale"),
  ("pt", .complete "Portuguese" "português" "Funcionalidade" "Contexto" "Cenário|Cenario"
    "Esquema do Cenário|Esquema do Cenario" "Exemplos" "*|Dado" "*|Quando" "*|Então|Entao" "*|E"
    "*|Mas"),
  ("ru", .complete "Russian" "русский" "Функционал|Фича" "Предыстория" "Сценарий"
    "Структура сценария" "Значения" "*|Допустим" "*|Если" "*|То" "*|И|К тому же" "*|Но|А"),
  ("sv", .complete "Swedish" "Svenska" "Egenskap" "Bakgrund" "Scenario" "Abstrakt Scenario"
    "Exempel" "*|Givet" "*|När" "*|Så" "*|Och" "*|Men"),
  ("zh-CN", .complete "Chinese simplified" "简体中文" "功能" "背景" "场景" "场景大纲" "例子" "*|假如<" "*|当<"
    "*|那么<" "*|而且<" "*|但是<")]

end FeatureFile
