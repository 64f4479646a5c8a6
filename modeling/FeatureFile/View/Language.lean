import FeatureFile.View.Basic
import FeatureFile.Language.Cache
/-!
The views of tables, languages, parsers and caches.
-/

namespace FeatureFile

def KeywordTable.view (table : KeywordTable) : View :=
  .fields "KeywordTable"
    [("entries", .mapping (table.entries.map fun entry => (entry.1.toList, entry.2)))]

/-- The view of a language, which tells whether its parser has been made. -/
def Language.view (language : Language) (compiled : Bool) : View :=
  .fields "NaturalLanguage"
    [("identifier", .string language.identifier),
      ("grammar_identifier", .quoted language.grammarIdentifier), ("compiled", .bool compiled)]

def Parser.view (parser : Parser) : View :=
  .fields "CompiledParser"
    [("language", .string parser.language.identifier), ("entry_rule", .string parser.entryRule),
      ("rules", .nat parser.grammar.rules.length)]

/-- The view of what makes grammars from a template. -/
def Template.view (template : Text) : View :=
  .fields "GrammarCompiler" [("template_len", .nat template.byteSize)]

/-- The view of what parses by the settings. -/
def Settings.view (settings : Settings) : View :=
  .record "ParseDispatcher" [("backend", .word settings.backend.label)] true

def Cache.view (cache : Cache) : View :=
  .fields "LanguageCache"
    [("registered", .nat cache.registry.size), ("cached", .nat cache.size),
      ("backend", .word cache.backend.label)]

end FeatureFile
