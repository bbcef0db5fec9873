import MountRegistry.Broker.Submission

/-
  Transactions of a broker. A reader has one read open at a time: it must be closed before the
  next, unless it failed. A writer stages edits in a draft for each kind of store, opened at the
  first edit for it, and submits the drafts that hold edits, configuration first. A transaction
  that reads and writes sees its own edits.
-/

namespace MountRegistry

/-- The reading side of a transaction. It has one open read at a time. -/
structure Reader where
  id : String
  broker : Broker
  /-- Whether a read is open. -/
  reading : Bool := false
  deriving Repr

namespace Reader

/-- The failure of a read that comes while another is open. -/
def stillReading (id : String) : TransactionFailure :=
  .illegalState ("transaction " ++ id ++
    " already has an open read, close it before reading again")

/-- Reads from a draft if there is one, else what is committed. -/
def read (r : Reader) (pool : StorePool) (draft : Option StoreDraft) (kind : StoreKind)
    (path : DataPath) : Reader × Except TransactionFailure (Option Json) :=
  if r.reading then (r, .error (stillReading r.id))
  else
    let found := match draft with
      | some d => d.read path
      | none => r.broker.readCommitted pool kind path
    match found with
    | .ok found => ({ r with reading := true }, .ok found)
    | .error e => (r, .error (.store e))

/-- Closes the open read, so that the next one can come. -/
def close (r : Reader) : Reader := { r with reading := false }

end Reader

/-- The writing side of a transaction: a draft for each kind of store that it has written to. -/
structure Writer where
  broker : Broker
  drafts : List (StoreKind × StoreDraft) := []
  deriving Repr

namespace Writer

/-- The failure of a write to the root, which transactions do not write. -/
def rootRefused : TransactionFailure :=
  .invalidPath "writes must target a node below the mount root"

/-- The draft of a kind, if the transaction has written to it. -/
def draft? (w : Writer) (kind : StoreKind) : Option StoreDraft := Keyed.find? w.drafts kind

/-- The draft for a kind, a new one if there is none. -/
def draft (w : Writer) (pool : StorePool) (kind : StoreKind) : StoreDraft :=
  (w.draft? kind).getD (w.broker.store pool kind).openDraft

/-- Puts the draft of a kind in the place of the one before. -/
def setDraft (w : Writer) (kind : StoreKind) (d : StoreDraft) : Writer :=
  { w with drafts := Keyed.insert w.drafts kind d }

/-- Stages an edit below the root. The draft stays open when the edit fails. -/
def stage (w : Writer) (pool : StorePool) (kind : StoreKind) (e : Edit) :
    Writer × Except TransactionFailure Unit :=
  if e.path.isRoot then (w, .error rootRefused)
  else
    let d := w.draft pool kind
    match d.stage e with
    | .ok d => (w.setDraft kind d, .ok ())
    | .error e => (w.setDraft kind d, .error (.store e))

/-- The cohorts of the drafts that hold edits. -/
def cohorts (w : Writer) (pool : StorePool) : List (Nat × Cohort) :=
  (w.drafts.filter (!·.2.edits.isEmpty)).map fun (kind, d) =>
    (w.broker.storeNumber kind, d.toCohort (w.broker.store pool kind).name)

/-- Submits the edits and drives their commit to its end. -/
def submit (w : Writer) (pool : StorePool) : StorePool × CommitResult :=
  let (pool, s) := Submission.run pool (Submission.create (w.cohorts pool))
  (pool, s.result)

end Writer

/-- A transaction, told by the access that it was opened with. -/
inductive Transaction where
  | readOnly (r : Reader)
  | writeOnly (w : Writer)
  | readWrite (r : Reader) (w : Writer)
  deriving Repr

namespace Transaction

/-- Its reading side, unless it only writes. -/
def reader? : Transaction → Option Reader
  | readOnly r | readWrite r _ => some r
  | writeOnly _ => none

/-- Its writing side, unless it only reads. -/
def writer? : Transaction → Option Writer
  | writeOnly w | readWrite _ w => some w
  | readOnly _ => none

/-- The transaction with another reading side, if it has one. -/
def withReader (t : Transaction) (r : Reader) : Transaction :=
  match t with
  | readOnly _ => readOnly r
  | readWrite _ w => readWrite r w
  | writeOnly w => writeOnly w

/-- The transaction with another writing side, if it has one. -/
def withWriter (t : Transaction) (w : Writer) : Transaction :=
  match t with
  | writeOnly _ => writeOnly w
  | readWrite r _ => readWrite r w
  | readOnly r => readOnly r

/-- Reads through a transaction that reads. -/
def read? (t : Transaction) (pool : StorePool) (kind : StoreKind) (path : DataPath) :
    Option (Transaction × Except TransactionFailure (Option Json)) :=
  t.reader?.map fun r =>
    let (r, found) := r.read pool (t.writer?.bind (·.draft? kind)) kind path
    (t.withReader r, found)

/-- Stages through a transaction that writes. -/
def stage? (t : Transaction) (pool : StorePool) (kind : StoreKind) (e : Edit) :
    Option (Transaction × Except TransactionFailure Unit) :=
  t.writer?.map fun w =>
    let (w, result) := w.stage pool kind e
    (t.withWriter w, result)

end Transaction

end MountRegistry
