import SchemaCompiler.Yaml.Token
import SchemaCompiler.Yaml.Plain

/-! Documents of a text as trees. A reference stands for a copy of the node that its anchor names;
inside that node itself it cannot be used. -/

namespace SchemaCompiler.Yaml

/-- What is left to read, and the anchored nodes read so far, the latest first. -/
structure Reading where
  tokens : List Token
  anchors : List (String × Value) := []

namespace Reading

def drop (r : Reading) : Reading := { r with tokens := r.tokens.tail }

def next? (r : Reading) : Option Token := r.tokens.head?

def name (r : Reading) (anchor : Option String) (v : Value) : Reading :=
  match anchor with
  | some a => { r with anchors := (a, v) :: r.anchors }
  | none => r

def empty : Value := .plain ""

def nextIn (r : Reading) (ts : List Token) : Bool :=
  r.next?.any ts.contains

mutual

/-- One node. `block` admits block collections, `bare` also a sequence without indentation. -/
def node? (block bare : Bool) : Nat → Reading → Option (Value × Reading)
  | 0, _ => none
  | fuel + 1, r =>
    match r.next? with
    | some (.reference a) => (r.anchors.lookup a).map (·, r.drop)
    | some (.anchor a) => do
      let (v, r) ← content? block bare true fuel (r.drop.name (some a) .unusable)
      some (v, r.name (some a) v)
    | _ => content? block bare false fuel r

def content? (block bare anchored : Bool) : Nat → Reading → Option (Value × Reading)
  | 0, _ => none
  | fuel + 1, r =>
    match r.next? with
    | some (.scalar plain text) => some (if plain then .plain text else .text text, r.drop)
    | some .flowSequence =>
      (flowItems? true fuel r.drop).map fun (vs, r) => (.seq vs, r)
    | some .flowMapping =>
      (flowEntries? true fuel r.drop).map fun (es, r) => (.map es, r)
    | some .entry =>
      if bare then (bareItems? fuel r).map fun (vs, r) => (.seq vs, r)
      else if anchored then some (empty, r) else none
    | some .blockSequence =>
      if block then (blockItems? fuel r.drop).map fun (vs, r) => (.seq vs, r)
      else if anchored then some (empty, r) else none
    | some .blockMapping =>
      if block then (blockEntries? fuel r.drop).map fun (es, r) => (.map es, r)
      else if anchored then some (empty, r) else none
    | _ => if anchored then some (empty, r) else none

/-- A node, or the empty one where one of `stops` stands instead. A key or value outside brackets may
be a sequence without indentation. -/
def nodeUnless? (stops : List Token) (block : Bool) : Nat → Reading → Option (Value × Reading)
  | 0, _ => none
  | fuel + 1, r =>
    if r.nextIn stops then some (empty, r) else node? block block fuel r

def blockItems? : Nat → Reading → Option (List Value × Reading)
  | 0, _ => none
  | fuel + 1, r =>
    match r.next? with
    | some .entry => do
      let r := r.drop
      let (v, r) ← if r.nextIn [.entry, .blockEnd] then some (empty, r) else node? true false fuel r
      let (vs, r) ← blockItems? fuel r
      some (v :: vs, r)
    | some .blockEnd => some ([], r.drop)
    | _ => none

def bareItems? : Nat → Reading → Option (List Value × Reading)
  | 0, _ => none
  | fuel + 1, r =>
    match r.next? with
    | some .entry => do
      let r := r.drop
      let (v, r) ←
        if r.nextIn [.entry, .key, .value, .blockEnd] then some (empty, r)
        else node? true false fuel r
      let (vs, r) ← bareItems? fuel r
      some (v :: vs, r)
    | _ => some ([], r)

def blockEntries? : Nat → Reading → Option (List (Value × Value) × Reading)
  | 0, _ => none
  | fuel + 1, r =>
    match r.next? with
    | some .key => do
      let (k, r) ← nodeUnless? [.key, .value, .blockEnd] true fuel r.drop
      let (v, r) ←
        if r.nextIn [.value] then nodeUnless? [.key, .value, .blockEnd] true fuel r.drop
        else some (empty, r)
      let (es, r) ← blockEntries? fuel r
      some ((k, v) :: es, r)
    | some .blockEnd => some ([], r.drop)
    | _ => none

/-- Items within brackets. An item with a colon is a mapping of one entry. -/
def flowItems? (first : Bool) : Nat → Reading → Option (List Value × Reading)
  | 0, _ => none
  | fuel + 1, r =>
    if r.nextIn [.flowSequenceEnd] then some ([], r.drop)
    else do
      let r ← if first then some r else if r.nextIn [.separator] then some r.drop else none
      if r.nextIn [.flowSequenceEnd] then some ([], r.drop)
      else
        let (v, r) ←
          if r.nextIn [.key] then do
            let (k, r) ← nodeUnless? [.value, .separator, .flowSequenceEnd] false fuel r.drop
            let (v, r) ←
              if r.nextIn [.value] then nodeUnless? [.separator, .flowSequenceEnd] false fuel r.drop
              else some (empty, r)
            some (Value.map [(k, v)], r)
          else node? false false fuel r
        let (vs, r) ← flowItems? false fuel r
        some (v :: vs, r)

def flowEntries? (first : Bool) : Nat → Reading → Option (List (Value × Value) × Reading)
  | 0, _ => none
  | fuel + 1, r =>
    if r.nextIn [.flowMappingEnd] then some ([], r.drop)
    else do
      let r ← if first then some r else if r.nextIn [.separator] then some r.drop else none
      if r.nextIn [.flowMappingEnd] then some ([], r.drop)
      else
        let (e, r) ←
          if r.nextIn [.key] then do
            let (k, r) ← nodeUnless? [.value, .separator, .flowMappingEnd] false fuel r.drop
            let (v, r) ←
              if r.nextIn [.value] then nodeUnless? [.separator, .flowMappingEnd] false fuel r.drop
              else some (empty, r)
            some ((k, v), r)
          else (node? false false fuel r).map fun (k, r) => ((k, empty), r)
        let (es, r) ← flowEntries? false fuel r
        some (e :: es, r)

end

def skipEnds : List Token → List Token
  | .documentEnd :: rest => skipEnds rest
  | ts => ts

/-- The documents of a text. Only the first may do without a start mark. -/
def documents? (first : Bool) : Nat → List Token → Option (List Value)
  | 0, _ => none
  | fuel + 1, tokens =>
    match if first then tokens else skipEnds tokens with
    | [] => some []
    | t :: ts => do
      let body ← if t == .documentStart then some ts else if first then some (t :: ts) else none
      let (v, r) ←
        if t == .documentStart && (body.isEmpty || body.head? == some .documentStart ||
          body.head? == some .documentEnd)
        then some (empty, { tokens := body })
        else node? true false (4 * body.length + 8) { tokens := body }
      let vs ← documents? false fuel r.tokens
      some (v :: vs)

end Reading

/-- The documents of a text, with scalars without quotes left open. -/
def documents? (text : String) : Option (List Value) :=
  (Token.ofText? text).bind fun ts => Reading.documents? true (ts.length + 1) ts

/-- The only document of a text, or an empty one if it has none. -/
def document? (text : String) : Option Value :=
  match documents? text with
  | some [] => some (.plain "")
  | some [v] => some v
  | _ => none

/-- How deep the containers of a document may nest. -/
def nesting : Nat := 128

/-- The documents of a text with all scalars settled. One that cannot be used is none: every part must be
usable and no key may be repeated. A text that falls into no documents counts as one of these. -/
def settledDocuments (text : String) : List (Option Value) :=
  match documents? text with
  | none => [none]
  | some vs => (vs.map Value.settled).map fun v =>
      if v.isUsable && v.keysDistinct && v.depth ≤ nesting then some v else none

end SchemaCompiler.Yaml
