import SchemaCompiler.Model.AnonymousName
import SchemaCompiler.Model.Dependency

/-! Finalizing groups: equal objects are merged, objects get their names, and the types are put in
order. -/

namespace SchemaCompiler

namespace Model

def setFinalized (m : Model) (key : GroupKey) (g : Group) (view : FinalizedGroup) : Model :=
  { m with groups := Table.insert key { g with finalized := some view } m.groups }

def finalizeGroup (m : Model) (key : GroupKey) : Model :=
  match m.group? key with
  | none => m
  | some g =>
    let merged := m.mergeEquals (Table.values g.anonymous)
    let named := merged.nameAnonymous (Table.keys g.named) g.anonymous
    named.setFinalized key g (named.viewOf key (named.dependencyOrder key))

def finalize (m : Model) : Model :=
  m.keys.foldl finalizeGroup m

/-- The finalized groups in the order of their keys. -/
def finalizedGroups (m : Model) : List (GroupKey × FinalizedGroup) :=
  m.groups.filterMap fun (key, g) => g.finalized.map (key, ·)

end Model

end SchemaCompiler
