import FeatureFile.View.Basic
import FeatureFile.Document.Tree
/-!
The view of a document's tree.
-/

namespace FeatureFile

def Tag.view (tag : Tag) : View :=
  .fields "Tag" [("name", .quoted tag.name), ("line", .nat tag.line)]

def Comment.view (comment : Comment) : View :=
  .fields "Comment" [("text", .quoted comment.text), ("line", .nat comment.line)]

def Row.view (row : Row) : View :=
  .fields "Row" [("cells", .list (row.cells.map .quoted)), ("line", .nat row.line)]

/-- The view of the rows of a table. -/
def View.table (rows : List Row) : View :=
  .fields "Table" [("rows", .list (rows.map Row.view))]

def DocString.view (block : DocString) : View :=
  .fields "DocString" [("content", .quoted block.content), ("line", .nat block.line)]

def StepArgument.view : StepArgument → View
  | table rows => .tagged "Table" (View.table rows)
  | docString block => .tagged "DocString" block.view

def Step.view (step : Step) : View :=
  .fields "Step"
    [("keyword", .quoted step.keyword), ("name", .quoted step.name), ("line", .nat step.line),
      ("argument", .option (step.argument.map StepArgument.view))]

def Background.view (b : Background) : View :=
  .fields "Background"
    [("comments", .list (b.comments.map Comment.view)), ("keyword", .quoted b.keyword),
      ("name", .quoted b.name), ("description", .quoted b.description), ("line", .nat b.line),
      ("steps", .list (b.steps.map Step.view))]

def Scenario.view (s : Scenario) : View :=
  .fields "Scenario"
    [("comments", .list (s.comments.map Comment.view)), ("tags", .list (s.tags.map Tag.view)),
      ("keyword", .quoted s.keyword), ("name", .quoted s.name),
      ("description", .quoted s.description), ("line", .nat s.line),
      ("steps", .list (s.steps.map Step.view))]

def Examples.view (e : Examples) : View :=
  .fields "Examples"
    [("comments", .list (e.comments.map Comment.view)), ("tags", .list (e.tags.map Tag.view)),
      ("keyword", .quoted e.keyword), ("name", .quoted e.name),
      ("description", .quoted e.description), ("line", .nat e.line), ("table", .table e.rows)]

def Outline.view (o : Outline) : View :=
  .fields "ScenarioOutline"
    [("comments", .list (o.comments.map Comment.view)), ("tags", .list (o.tags.map Tag.view)),
      ("keyword", .quoted o.keyword), ("name", .quoted o.name),
      ("description", .quoted o.description), ("line", .nat o.line),
      ("steps", .list (o.steps.map Step.view)), ("examples", .list (o.examples.map Examples.view))]

def Element.view : Element → View
  | scenario s => .tagged "Scenario" s.view
  | outline o => .tagged "ScenarioOutline" o.view

def Feature.view (feature : Feature) : View :=
  .fields "Feature"
    [("language", .option (feature.language.map .string)),
      ("comments", .list (feature.comments.map Comment.view)),
      ("tags", .list (feature.tags.map Tag.view)), ("keyword", .quoted feature.keyword),
      ("name", .quoted feature.name), ("description", .quoted feature.description),
      ("line", .nat feature.line),
      ("background", .option (feature.background.map Background.view)),
      ("elements", .list (feature.elements.map Element.view))]

end FeatureFile
