import Fossil.Reader
import Fossil.Garbage

/-! The calls that share one store, and their interleavings. -/

namespace Fossil

inductive Call where
  | publish (package : Package) (gate : PublicationGate)
  | compactOnce (chainId : UInt64)
  | collectGarbage (chainId : UInt64) (keepHeads : Nat) (minAge : Time) (dryRun : Bool)
  | openReader (chainId : UInt64)
  | account (reader : Reader) (address : Address) (block : UInt64)
  | storage (reader : Reader) (address : Address) (slot : Hash32) (block : UInt64)
  | code (reader : Reader) (address : Address) (block : UInt64)

def Call.Out : Call → Type
  | .publish .. => Unit
  | .compactOnce _ => Bool
  | .collectGarbage .. => GcReport
  | .openReader _ => Reader
  | .account .. => Option AccountEvent
  | .storage .. => Hash32
  | .code .. => Bytes

abbrev ArchiveSystem := System Call

/-- A store with the calls in progress on it. -/
abbrev ArchivePool := Pool Call Call.Out StoreOp StoreOp.Resp Error ArchiveSystem

section

variable (env : Externals)

def Call.body : (call : Call) → StoreProg call.Out
  | .publish package gate => Fossil.publish env package gate
  | .compactOnce chainId => Fossil.compactOnce env chainId
  | .collectGarbage chainId keepHeads minAge dryRun =>
      Fossil.collectGarbage env chainId keepHeads minAge dryRun
  | .openReader chainId => Reader.open env chainId
  | .account reader address block => reader.account env address block
  | .storage reader address slot block => reader.storage env address slot block
  | .code reader address block => reader.code env address block

/-- The packages read from any of these inputs. -/
def ReadFrom (inputs : Bytes → Prop) (package : Package) : Prop :=
  ∃ input, inputs input ∧ readPackage env input = .ok package

end

/-- The readers that an earlier call has opened. -/
def Opened (pool : ArchivePool) (reader : Reader) : Prop :=
  ∃ chainId, (⟨.openReader chainId, .ret reader⟩ : Task Call Call.Out StoreOp StoreOp.Resp Error) ∈
    pool.tasks

/-- Calls of an archive in use: packages are of the accepted ones, queries go to
opened readers, and nothing is collected. -/
def Ordinary (accepts : Package → Prop) (pool : ArchivePool) : Call → Prop
  | .publish package _ => accepts package
  | .compactOnce _ => True
  | .collectGarbage .. => False
  | .openReader _ => True
  | .account reader .. => Opened pool reader
  | .storage reader .. => Opened pool reader
  | .code reader .. => Opened pool reader

end Fossil
