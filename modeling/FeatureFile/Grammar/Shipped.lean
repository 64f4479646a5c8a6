import FeatureFile.Text.Lines
/-!
The grammar template that comes with the library. It says the same about documents as the reading
by lines, as a grammar over the whole text.
-/

namespace FeatureFile.Template

/-- The lines of the shipped template. -/
def shippedLines : List String := [
  "// Feature-file grammar for \x7b\x7b name \x7d\x7d.",
  "// Rendered once per language; keyword rules come from its keyword table.",
  "",
  "\x7b\x7b grammar_identifier \x7d\x7dParser = \x7b SOI ~ ignorable* ~ feature? ~ ignorable* ~ sp ~ EOI \x7d",
  "",
  "feature = \x7b",
  "    tags ~ sp ~ feature_keyword ~ \":\" ~ sp ~ text ~ line_end ~ description",
  "  ~ background?",
  "  ~ (scenario_outline | scenario)*",
  "\x7d",
  "",
  "background = \x7b",
  "    ignorable* ~ sp ~ background_keyword ~ \":\" ~ sp ~ text ~ line_end ~ description",
  "  ~ steps",
  "\x7d",
  "",
  "scenario = \x7b",
  "    tags ~ sp ~ scenario_keyword ~ \":\" ~ sp ~ text ~ line_end ~ description",
  "  ~ steps",
  "\x7d",
  "",
  "scenario_outline = \x7b",
  "    tags ~ sp ~ scenario_outline_keyword ~ \":\" ~ sp ~ text ~ line_end ~ description",
  "  ~ steps",
  "  ~ examples+",
  "\x7d",
  "",
  "examples = \x7b",
  "    tags ~ sp ~ examples_keyword ~ \":\" ~ sp ~ text ~ line_end ~ description",
  "  ~ ignorable* ~ table",
  "\x7d",
  "",
  "steps = _\x7b (ignorable* ~ step)* \x7d",
  "",
  "step = \x7b",
  "    sp ~ step_keyword ~ text ~ line_end",
  "  ~ (ignorable* ~ (table | doc_string))?",
  "\x7d",
  "",
  "table     = \x7b table_row ~ (ignorable* ~ table_row)* \x7d",
  "table_row = \x7b sp ~ \"|\" ~ (cell ~ \"|\")+ ~ line_end \x7d",
  "cell      = @\x7b (!(\"|\" | nl) ~ ANY)* \x7d",
  "",
  "doc_string      = \x7b sp ~ doc_string_fence ~ sp ~ nl ~ doc_string_body ~ sp ~ doc_string_fence ~ line_end \x7d",
  "doc_string_body = @\x7b doc_string_line* \x7d",
  "doc_string_line = _\x7b !(sp ~ doc_string_fence) ~ (!nl ~ ANY)* ~ nl \x7d",
  "doc_string_fence = _\x7b \"\\\"\\\"\\\"\" \x7d",
  "",
  "tags     = _\x7b (tag_line | ignorable)* \x7d",
  "tag_line = _\x7b sp ~ tag ~ (sp ~ tag)* ~ line_end \x7d",
  "tag      = @\x7b \"@\" ~ (!(\" \" | \"\\t\" | \"@\" | nl) ~ ANY)+ \x7d",
  "",
  "description      = \x7b (!structural_start ~ (blank_line | description_line))* \x7d",
  "description_line = _\x7b sp ~ (!nl ~ ANY) ~ (!nl ~ ANY)* ~ line_end \x7d",
  "structural_start = _\x7b",
  "    sp ~ ( \"#\" | \"@\" | \"|\" | doc_string_fence | step_keyword | section_header )",
  "\x7d",
  "section_header = _\x7b",
  "    scenario_outline_keyword ~ \":\"",
  "  | scenario_keyword ~ \":\"",
  "  | background_keyword ~ \":\"",
  "  | examples_keyword ~ \":\"",
  "  | feature_keyword ~ \":\"",
  "\x7d",
  "",
  "ignorable    = _\x7b blank_line | comment_line \x7d",
  "comment_line = _\x7b sp ~ comment ~ line_end \x7d",
  "comment      = @\x7b \"#\" ~ (!nl ~ ANY)* \x7d",
  "",
  "text       = @\x7b (!nl ~ ANY)* \x7d",
  "sp         = _\x7b (\" \" | \"\\t\")* \x7d",
  "line_end   = _\x7b sp ~ (nl | EOI) \x7d",
  "blank_line = _\x7b sp ~ nl \x7d",
  "// Same line breaks as `str::lines`; a lone carriage return is text.",
  "nl         = _\x7b \"\\r\\n\" | \"\\n\" \x7d",
  "",
  "feature_keyword          = @\x7b \x7b\x7b feature_keywords | alternation \x7d\x7d \x7d",
  "background_keyword       = @\x7b \x7b\x7b background_keywords | alternation \x7d\x7d \x7d",
  "scenario_keyword         = @\x7b \x7b\x7b scenario_keywords | alternation \x7d\x7d \x7d",
  "scenario_outline_keyword = @\x7b \x7b\x7b scenario_outline_keywords | alternation \x7d\x7d \x7d",
  "examples_keyword         = @\x7b \x7b\x7b examples_keywords | alternation \x7d\x7d \x7d",
  "step_keyword             = @\x7b \x7b\x7b step_keywords | alternation \x7d\x7d \x7d"]

/-- The shipped template; each of its lines ends in a line feed. -/
def shipped : Text :=
  shippedLines.flatMap fun line => line.toList ++ ['\n']

end FeatureFile.Template
