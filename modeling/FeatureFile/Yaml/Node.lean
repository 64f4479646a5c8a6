import FeatureFile.Yaml.Token
/-!
Nodes of YAML, of scalars and mappings alone: a text with a sequence has none. What is open at any
time is a stack of mappings, so tokens are read one at a time.
-/

namespace FeatureFile.Yaml

/-- What a document or a key can have as its value. Keys are scalars, given by their text. -/
inductive Node where
  | absent
  | scalar (scalar : Scalar)
  | mapping (entries : List (Text × Node))
  deriving Repr

/-- What has been read of the entry that is open in a mapping. -/
inductive Slot where
  /-- Nothing: an entry may start. -/
  | ready
  /-- The mark of a key, but no key. -/
  | marked
  | keyed (key : Text)
  /-- A key and the mark of its value. -/
  | awaiting (key : Text)
  /-- All of it, where a comma has to come before the next one. -/
  | full
  deriving DecidableEq, Repr

/-- An open mapping: whether it is in braces, its entries so far, last first, and the open one. -/
structure Frame where
  inFlow : Bool
  entries : List (Text × Node)
  slot : Slot
  deriving Repr

namespace Frame

/-- A mapping of which nothing has been read. -/
def start (inFlow : Bool) : Frame := ⟨inFlow, [], .ready⟩

/-- One more entry. Only in braces do entries need a comma between them. -/
def push (frame : Frame) (key : Text) (value : Node) : Frame :=
  { frame with
    entries := (key, value) :: frame.entries
    slot := if frame.inFlow then .full else .ready }

/-- The frame with its open entry closed: what is missing is an empty key or no value. -/
def close (frame : Frame) : Frame :=
  match frame.slot with
  | .ready | .full => frame
  | .marked => frame.push [] .absent
  | .keyed key | .awaiting key => frame.push key .absent

/-- The mapping of a frame. -/
def node (frame : Frame) : Node :=
  .mapping frame.close.entries.reverse

/-- The frame with a value for its open key. -/
def fill? (frame : Frame) (value : Node) : Option Frame :=
  match frame.slot with
  | .awaiting key => some (frame.push key value)
  | _ => none

/-- The frame with a scalar: a key, or the value of the open key. In braces a key needs no mark if
it has no value either. -/
def scalar? (frame : Frame) (scalar : Scalar) : Option Frame :=
  match frame.slot with
  | .marked => some { frame with slot := .keyed scalar.text }
  | .ready => if frame.inFlow then some (frame.push scalar.text .absent) else none
  | _ => frame.fill? (.scalar scalar)

/-- The frame with the mark of a key, which in a block closes the entry before it. -/
def key? (frame : Frame) : Option Frame :=
  if frame.inFlow then
    match frame.slot with
    | .ready => some { frame with slot := .marked }
    | _ => none
  else some { frame.close with slot := .marked }

/-- The frame with the mark of a value. -/
def value? (frame : Frame) : Option Frame :=
  match frame.slot with
  | .marked => some { frame with slot := .awaiting [] }
  | .keyed key => some { frame with slot := .awaiting key }
  | _ => none

/-- The frame with a comma. -/
def comma? (frame : Frame) : Option Frame :=
  match frame.inFlow, frame.slot with
  | false, _ | true, .ready => none
  | true, _ => some { frame.close with slot := .ready }

end Frame

/-- How far the only document of a text has been read. -/
inductive Document where
  /-- Nothing, or the mark that opens it. -/
  | start (marked : Bool)
  /-- Inside a mapping and those around it. -/
  | inside (frame : Frame) (outer : List Frame)
  /-- All of it, perhaps with the mark that closes it. -/
  | done (root : Node) (marked : Bool)
  deriving Repr

namespace Document

/-- A finished mapping is a value of the mapping around it, or the root. -/
def finish? (frame : Frame) : List Frame → Option Document
  | [] => some (.done frame.node false)
  | parent :: outer => (parent.fill? frame.node).map (.inside · outer)

/-- One more token inside a mapping. -/
def inside? (frame : Frame) (outer : List Frame) : Token → Option Document
  | .scalar scalar => (frame.scalar? scalar).map (.inside · outer)
  | .key => frame.key?.map (.inside · outer)
  | .value => frame.value?.map (.inside · outer)
  | .comma => frame.comma?.map (.inside · outer)
  | .blockStart => nested? false
  | .flowStart => nested? true
  | .blockEnd => if frame.inFlow then none else finish? frame outer
  | .flowEnd => if frame.inFlow then finish? frame outer else none
  | .documentStart | .documentEnd => none
where
  /-- A mapping can only be the value of a key. -/
  nested? (inFlow : Bool) : Option Document :=
    match frame.slot with
    | .awaiting _ => some (.inside (.start inFlow) (frame :: outer))
    | _ => none

/-- One more token. -/
def step? : Document → Token → Option Document
  | start _, .blockStart => some (inside (.start false) [])
  | start _, .flowStart => some (inside (.start true) [])
  | start _, .scalar scalar => some (done (.scalar scalar) false)
  | start false, .documentStart => some (start true)
  | start true, .documentEnd => some (done .absent true)
  | start _, _ => none
  | inside frame outer, token => inside? frame outer token
  | done root _, .documentEnd => some (done root true)
  | done _ _, _ => none

/-- The root, when the tokens have ended. -/
def root? : Document → Option Node
  | start _ => some .absent
  | inside _ _ => none
  | done root _ => some root

end Document

/-- The root of the only document in a list of tokens. -/
def root? (tokens : List Token) : Option Node :=
  (tokens.foldlM Document.step? (.start false)).bind Document.root?

end FeatureFile.Yaml
