import FlexQL.Spec.Database

/-!
# Processes of the server on a data directory (`main.cpp`)

`main` opens the database, serves its executor until it is told to stop, takes
a snapshot and destroys the database, which takes another. The statements of
clients go to the executor and not through `Database::execute`, so none of them
is logged. A process that ends in this way may be followed by the next one.
-/

namespace FlexQL.Spec

open Lib FlexQL.Ref

variable [FloatLib]

/-- The end of `main`: its snapshot and that of the destructor, at least one of
which succeeds. -/
inductive Exits : Database × Disk → Disk → Prop where
  | mk {s s₁ s₂ : Database × Disk} {now₁ now₂ : Int64} {fault₁ fault₂ : Option Snapshot.SaveFault}
      {tables₁ tables₂ : List (Bytes × Table)} {e₁ e₂ : Option Bytes} :
      Within s.1 → Snapshots s.1 now₁ tables₁ →
      s.1.takeSnapshot now₁ fault₁ tables₁ s.2 = .ok (s₁, e₁) →
      Snapshots s₁.1 now₂ tables₂ →
      s₁.1.takeSnapshot now₂ fault₂ tables₂ s₁.2 = .ok (s₂, e₂) →
      e₁ = none ∨ e₂ = none → Exits s s₂.2

/-- The states of the database in one process after another. -/
inductive Processes (dataDir : Bytes) : Database × Disk → Prop where
  | opened {now : Int64} {s : Database × Disk} :
      dataDir ≠ [] → Database.new dataDir now Disk.empty = .ok s → Processes dataDir s
  /-- A client's statement. -/
  | serve {db db' : Database} {disk : Disk} {now : Int64} {sql : Bytes} {r : QueryResult} :
      Processes dataDir (db, disk) → Loggable sql → db.run now sql = .ok (db', r) →
      Processes dataDir (db', disk)
  | restart {s s' : Database × Disk} {disk : Disk} {now : Int64} :
      Processes dataDir s → Exits s disk → Database.new dataDir now disk = .ok s' →
      Processes dataDir s'

end FlexQL.Spec
