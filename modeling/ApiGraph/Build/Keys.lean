import ApiGraph.Build.State

/-!
Putting the pending keys in place. A column that is there under the key's name keeps its shape and
becomes a foreign key; otherwise a key column is added.
-/

namespace ApiGraph.Build

/-- The columns with a key in place. -/
def bindColumn (columns : Table Column) (name target : String) : Table Column :=
  match columns.get? name with
  | some column => columns.insert name { column with foreignKey := some target }
  | none => columns.insert name (.key target)

def bindKey (s : State) (key : PendingKey) : Except Fault State := do
  let some target := s.entities.get? key.target
    | .error (.unknownDefinition key.owner.name key.target)
  let reference := target.foreignKeyTarget
  match key.owner with
  | .entity name =>
    s.modifyEntity name fun e => { e with columns := bindColumn e.columns key.column reference }
  | .joinTable name =>
    match s.joinTables.get? name with
    | some t =>
      let t := { t with columns := bindColumn t.columns key.column reference }
      return { s with joinTables := Table.insert s.joinTables name t }
    | none => .error (.unknownDefinition name name)

/-- Puts all pending keys in place, in the order in which they were found. -/
def bindKeys (s : State) : Except Fault State :=
  s.pending.foldlM bindKey { s with pending := [] }

end ApiGraph.Build
